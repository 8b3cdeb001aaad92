import Lox.Number
import Mathlib

/-! The sign of numbers that are read. A numeral has no sign, and rounding gives it none. -/

namespace Lox.Number

open Float.Model (Format UnpackedFloat)
open Float.Model.UnpackedFloat

/-- The sign of an unpacked number, which is positive where there is none. -/
def sign : UnpackedFloat → Sign
  | .infinity s | .zero s | .finite s _ _ _ => s
  | .notANumber => .positive

section

variable {spec : Format} {u v : UnpackedFloat}

theorem sign_roundWithAccuracy (s : Sign) (mantissa : ℕ) (exponent : ℤ) (accuracy : Accuracy) :
    sign (roundWithAccuracy spec s mantissa exponent accuracy) = s := by
  unfold roundWithAccuracy
  dsimp only
  split <;> rfl

/-- Positive factors have a positive product. -/
theorem sign_mul (hu : sign u = .positive) (hv : sign v = .positive) : sign (mul spec u v) = .positive := by
  cases u <;> cases v <;> simp only [sign] at hu hv <;> subst_vars <;>
    first | rfl | exact sign_roundWithAccuracy _ _ _ _

theorem sign_div (hu : sign u = .positive) (hv : sign v = .positive) : sign (div spec u v) = .positive := by
  cases u <;> cases v <;> simp only [sign] at hu hv <;> subst_vars <;>
    first | rfl | exact sign_roundWithAccuracy _ _ _ _

theorem sign_ofNat (n : ℕ) : sign (ofNat spec n) = .positive := by
  unfold ofNat ofInt UnpackedFloat.normalize
  split
  · next h => exact absurd (Std.compare_eq_lt.1 h) (by omega)
  · rfl
  · exact sign_roundWithAccuracy _ _ _ _

theorem sign_ofScientific (n : ℕ) (e : ℤ) : sign (ofScientific spec n e) = .positive := by
  unfold ofScientific
  split
  · rfl
  split
  · rfl
  split
  · rfl
  split
  · exact sign_mul rfl rfl
  · exact sign_div rfl rfl

theorem unpackSign_pack (u : UnpackedFloat) : unpackSign (u.pack spec) = (sign u).toBitVec := by
  cases u with
  | finite s m e h =>
    unfold pack
    dsimp only
    split
    · exact unpackSign_packComponents _ _ _
    split
    · exact unpackSign_packComponents _ _ _
    · exact unpackSign_packComponents _ _ _
  | infinity | notANumber | zero => exact unpackSign_packComponents _ _ _

theorem sign_unpack {b : BitVec spec.numBits} (h : unpackSign b = 0#1) : sign (unpack spec b) = .positive := by
  unfold unpack
  rw [h]
  dsimp only
  split
  · split <;> rfl
  split
  · split <;> rfl
  · rfl

end

variable {x y : Float}

theorem unpackSign_toNat (b : BitVec 64) : (@unpackSign Format.binary64 b).toNat = b.toNat / 2 ^ 63 % 2 := by
  unfold unpackSign
  rw [BitVec.toNat_cast, BitVec.extractLsb_toNat, Nat.shiftRight_eq_div_pow]
  rfl

theorem isNegative_eq_false_iff : isNegative x = false ↔ @unpackSign Format.binary64 x.toBits.toBitVec = 0#1 := by
  rw [← BitVec.toNat_inj, unpackSign_toNat]
  have hlt : x.toBits.toBitVec.toNat < 2 ^ 64 := x.toBits.toBitVec.isLt
  change decide (2 ^ 63 ≤ x.toBits.toBitVec.toNat) = false ↔ _ % 2 = 0
  rw [decide_eq_false_iff_not]
  omega

theorem isNegative_ofModel_pack {u : UnpackedFloat} (h : sign u = .positive) :
    isNegative (Float.ofModel (Float.Model.pack u)) = false :=
  isNegative_eq_false_iff.2 ((unpackSign_pack u).trans (congrArg Sign.toBitVec h))

theorem isNegative_div (hx : isNegative x = false) (hy : isNegative y = false) : isNegative (x / y) = false :=
  isNegative_ofModel_pack
    (sign_div (sign_unpack (isNegative_eq_false_iff.1 hx)) (sign_unpack (isNegative_eq_false_iff.1 hy)))

theorem isNegative_powerOfTen : ∀ (e : ℕ) (h : e < Float.exactlyRepresentablePowersOfTen.size),
    isNegative Float.exactlyRepresentablePowersOfTen[e] = false := by
  decide

theorem isNegative_ofScientific (n e : ℕ) : isNegative (Float.ofScientific n true e) = false := by
  unfold Float.ofScientific
  split
  · exact isNegative_div (isNegative_ofModel_pack (sign_ofNat _)) (isNegative_powerOfTen e _)
  · exact isNegative_ofModel_pack (sign_ofScientific _ _)

/-- A number that is read from digits has no sign. -/
theorem isNegative_ofNumeral (text : List Char) : isNegative (ofNumeral text) = false :=
  isNegative_ofScientific _ _

/-- Numbers without a sign that count as equal are the same. -/
theorem eq_of_beq_unsigned (hx : isNegative x = false) (hy : isNegative y = false) (h : x == y) : x = y := by
  have hzero : isNegative (-0 : Float) = true := by decide
  obtain ⟨-, -, heq | ⟨-, rfl⟩ | ⟨rfl, -⟩⟩ := Float.beq_iff_ne_nan_and_eq.1 h
  · exact heq
  · exact absurd (hzero.symm.trans hy) (by decide)
  · exact absurd (hzero.symm.trans hx) (by decide)

end Lox.Number
