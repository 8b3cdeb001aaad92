/-! The shortest decimal that reads back as a given double. The reals that round to the double form an
interval. The coarsest grid of multiples of a power of ten with a point in that interval gives the
fewest digits, and of two points the nearer one is taken. -/

namespace Lox

/-- The magnitude of a finite double: `mantissa * 2 ^ exponent`. -/
structure Double where
  mantissa : Nat
  exponent : Int

/-- `coefficient * 10 ^ exponent`. -/
structure Decimal where
  coefficient : Nat
  exponent : Int

namespace Double

def ofBits (bits : Nat) : Double :=
  let fraction := bits % Nat.pow 2 52
  let biased : Nat := bits / Nat.pow 2 52 % Nat.pow 2 11
  if biased = 0 then ⟨fraction, -1074⟩ else ⟨Nat.pow 2 52 + fraction, (biased : Int) - 1075⟩

/-- The value, when it is a whole number. -/
def whole? (x : Double) : Option Nat :=
  let scale := Nat.pow 2 x.exponent.natAbs
  if 0 ≤ x.exponent then some (x.mantissa * scale)
  else if x.mantissa % scale = 0 then some (x.mantissa / scale)
  else none

/-- The lower end of the interval is nearer at a power of two, where the spacing halves. Ends count in
quarters of the spacing above. -/
def lowerGap (x : Double) : Nat :=
  if x.mantissa = Nat.pow 2 52 ∧ x.exponent ≠ -1074 then 1 else 2

/-- The multiple of `10 ^ s` that stands for `x` on that grid, if one lies in the interval of `x`. The
ends belong to the interval when the mantissa is even. -/
def onGrid? (x : Double) (s : Int) : Option Nat :=
  let quarter := Nat.pow 2 (x.exponent - 2).toNat * Nat.pow 10 (-s).toNat
  let step := Nat.pow 2 (2 - x.exponent).toNat * Nat.pow 10 s.toNat
  let value := 4 * x.mantissa * quarter
  let low := (4 * x.mantissa - x.lowerGap) * quarter
  let high := (4 * x.mantissa + 2) * quarter
  let inside (c : Nat) : Bool :=
    if x.mantissa % 2 = 0 then low ≤ c * step && c * step ≤ high
    else low < c * step && c * step < high
  let below := value / step
  if inside below then
    if inside (below + 1) &&
        (step < 2 * (value % step) || (step = 2 * (value % step) && below % 2 = 1)) then
      some (below + 1)
    else some below
  else if inside (below + 1) then some (below + 1)
  else none

/-- The first hit on the grids `s`, `s - 1`, and so on, with `n` finer ones to try. -/
def shortestFrom (x : Double) (s : Int) : (n : Nat) → Decimal
  | 0 => ⟨(x.onGrid? s).getD 0, s⟩
  | n + 1 =>
    match x.onGrid? s with
    | some c => ⟨c, s⟩
    | none => x.shortestFrom (s - 1) n

/-- The search starts above the value, as 0.30103 is just over the decimal logarithm of two, and
seventeen digits always suffice. -/
def shortest (x : Double) : Decimal :=
  if x.mantissa = 0 then ⟨0, 0⟩
  else x.shortestFrom (((x.mantissa.log2 : Int) + 1 + x.exponent) * 30103 / 100000 + 2) 24

end Double

end Lox
