import Lox.Decimal.Shortest
import Lox.Text.Blank
import Lox.Text.Digit

/-! Numbers as text. A number is a double. It is read from digits with an optional fraction and
written with the fewest digits that read back. -/

namespace Lox.Number

def digitsValue (ds : List Char) : Nat :=
  ds.foldl (fun n c => n * 10 + (c.toNat - '0'.toNat)) 0

/-- The double nearest to `whole.fraction`, a half going to the even neighbour. -/
def ofDigits (whole fraction : List Char) : Float :=
  Float.ofScientific (digitsValue (whole ++ fraction)) true fraction.length

/-- The number of a numeral: digits, or digits with a point and digits. -/
def ofNumeral (text : List Char) : Float :=
  ofDigits (text.takeWhile (· ≠ '.')) ((text.dropWhile (· ≠ '.')).drop 1)

def magnitude (x : Float) : Double := Double.ofBits x.toBits.toNat

def isNegative (x : Float) : Bool := Nat.pow 2 63 ≤ x.toBits.toNat

def signed (x : Float) (text : String) : String :=
  if isNegative x then "-" ++ text else text

/-- How a decimal is laid out: without a power of ten when the exponent of its first digit lies in
the given range, else with one of at least `exponentDigits` digits. -/
structure Layout where
  positionalFrom : Int
  positionalBelow : Int
  exponentDigits : Nat

def layout : Layout := ⟨-4, 16, 2⟩

/-- A point after `n` digits, with zeros where digits are missing and at least one digit behind it. -/
def pointAfter (n : Int) (ds : List Char) : List Char :=
  if n ≤ 0 then '0' :: '.' :: (List.replicate (-n).toNat '0' ++ ds)
  else if ds.length ≤ n.toNat then ds ++ List.replicate (n.toNat - ds.length) '0' ++ ['.', '0']
  else ds.take n.toNat ++ '.' :: ds.drop n.toNat

def scientific (exponentDigits : Nat) (e : Int) (ds : List Char) : List Char :=
  let power := (toString e.natAbs).toList
  let pad := List.replicate (exponentDigits - power.length) '0'
  let tail := ds.drop 1
  ds.take 1 ++ (if tail.isEmpty then [] else '.' :: tail) ++
    'e' :: (if e < 0 then '-' else '+') :: (pad ++ power)

def Layout.text (l : Layout) (d : Decimal) : String :=
  let ds := (toString d.coefficient).toList
  let e : Int := d.exponent + ds.length - 1
  String.ofList <|
    if l.positionalFrom ≤ e ∧ e < l.positionalBelow then pointAfter (e + 1) ds
    else scientific l.exponentDigits e ds

/-- The fewest digits that read back. -/
def written (x : Float) : String :=
  if x.isNaN then "nan"
  else signed x (if x.isInf then "inf" else layout.text (magnitude x).shortest)

/-- The text a program sees: whole numbers below `10 ^ 21` have all their digits and no fraction. -/
def display (x : Float) : String :=
  if x.isNaN then "NaN"
  else if x.isInf then signed x "Infinity"
  else match (magnitude x).whole? with
    | some n => if n < Nat.pow 10 21 then signed x (toString n) else written x
    | none => written x

def ofUnsigned? (text : List Char) : Option Float :=
  let mantissa := text.takeWhile (· ≠ 'e')
  let whole := mantissa.takeWhile (· ≠ '.')
  let fraction := (mantissa.dropWhile (· ≠ '.')).drop 1
  let digits := whole ++ fraction
  let power? : Option Int :=
    match text.dropWhile (· ≠ 'e') with
    | [] => some 0
    | _ :: '-' :: ds => if !ds.isEmpty && ds.all Char.isDigit then some (-digitsValue ds) else none
    | _ :: '+' :: ds | _ :: ds =>
      if !ds.isEmpty && ds.all Char.isDigit then some (digitsValue ds) else none
  if String.ofList text = "inf" ∨ String.ofList text = "infinity" then some (1 / 0)
  else if String.ofList text = "nan" then some (0 / 0)
  else if digits.isEmpty || !digits.all Char.isDigit then none
  else power?.map fun power =>
    let e : Int := power - fraction.length
    Float.ofScientific (digitsValue digits) (e ≤ 0) e.natAbs

/-- A letter in lower case, a digit of any script as the one of ASCII. -/
def plain (c : Char) : Char := (Text.digit? c).elim c.toLower Nat.digitChar

/-- Leaves out each underscore that stands between two digits. -/
def ungrouped : List Char → List Char
  | c :: '_' :: d :: cs =>
    if c.isDigit && d.isDigit then c :: ungrouped (d :: cs) else c :: ungrouped ('_' :: d :: cs)
  | c :: cs => c :: ungrouped cs
  | [] => []

/-- Decimal text with an optional sign and power of ten, or the name of an infinity or of no number.
Blanks around it do not count. -/
def ofText? (text : String) : Option Float :=
  match ungrouped ((Text.strip text).toList.map plain) with
  | '-' :: cs => (ofUnsigned? cs).map (- ·)
  | '+' :: cs => ofUnsigned? cs
  | cs => ofUnsigned? cs

end Lox.Number
