/-! Double-precision numbers, exactly. A finite number is an odd integer times a
power of two, or zero; so equal numbers are equal as data, and the comparisons
need no rounding. Zero has no sign here, because nothing that reads or prints a
number can tell the two zeros apart. -/

namespace Retouch

inductive Number where
  | nan
  | infinite (negative : Bool)
  | finite (mantissa exponent : Int)
  deriving DecidableEq, Repr

namespace Number

def zero : Number := .finite 0 0

/-- The power that an exponent stands for above the fraction bar: 1 when the
exponent is negative. -/
def scale (base : Nat) (e : Int) : Nat := Nat.pow base e.toNat

/-- Take the factors of two out of a mantissa. -/
def reduce (m : Nat) (e : Int) : Nat × Int :=
  if _h : m ≠ 0 ∧ m % 2 = 0 then reduce (m / 2) (e + 1) else (m, e)
termination_by m
decreasing_by omega

/-- The number `m * 2 ^ e`, or its negative. -/
def ofScaled (negative : Bool) (m : Nat) (e : Int) : Number :=
  if m = 0 then zero
  else
    let (m', e') := reduce m e
    .finite (if negative then -(m' : Int) else m') e'

/-- The quotient rounded to the nearest integer, a half to the even neighbour. -/
def roundDiv (a b : Nat) : Nat :=
  let q := a / b
  let r := a % b
  if 2 * r < b then q
  else if b < 2 * r then q + 1
  else if q % 2 = 0 then q else q + 1

/-- `roundDiv (a / 2 ^ e) b` for a shift of either sign. -/
def scaledDiv (a b : Nat) (e : Int) : Nat :=
  if 0 ≤ e then roundDiv a (b * scale 2 e) else roundDiv (a * scale 2 (-e)) b

/-- Whether `a / (b * 2 ^ e)` lies below `2 ^ 52`, the least significand. -/
def isNarrow (a b : Nat) (e : Int) : Bool := a * scale 2 (-e) < scale 2 52 * (b * scale 2 e)

def leastExponent : Int := -1074

/-- The double nearest to a positive quotient, or its negative. The quotient lies
within a factor of two of the guess, so that one step makes it wide enough. -/
def ofRatio (negative : Bool) (a b : Nat) : Number :=
  if a = 0 then zero
  else
    let guess : Int := (Nat.log2 a : Int) - Nat.log2 b - 52
    let e := if isNarrow a b guess then guess - 1 else guess
    let e := if e < leastExponent then leastExponent else e
    let m := scaledDiv a b e
    if scale 2 1024 ≤ m * scale 2 e then .infinite negative else ofScaled negative m e

/-- The double nearest to `digits * 10 ^ shift`. Magnitudes far outside the
range of doubles are settled without computing the power. -/
def ofDecimal (negative : Bool) (digits : Nat) (shift : Int) : Number :=
  if digits = 0 then zero
  else if 400 < shift then .infinite negative
  else if shift + Nat.log2 digits < -800 then zero
  else ofRatio negative (digits * scale 10 shift) (scale 10 (-shift))

def ofNat (n : Nat) : Number := ofRatio false n 1

def ofInt (n : Int) : Number := ofRatio (n < 0) n.natAbs 1

/-- The sum, rounded to the nearest double. -/
def add : Number → Number → Number
  | .nan, _ | _, .nan => .nan
  | .infinite n, .infinite m => if n = m then .infinite n else .nan
  | .infinite n, .finite .. | .finite .., .infinite n => .infinite n
  | .finite a e, .finite b f =>
    let low := min e f
    let sum := a * scale 2 (e - low) + b * scale 2 (f - low)
    ofRatio (sum < 0) (sum.natAbs * scale 2 low) (scale 2 (-low))

/-- Equality as scripts test it: no number is equal to a NaN. -/
def same : Number → Number → Bool
  | .nan, _ => false
  | a, b => a = b

/-- Strictly smaller; false when one side is a NaN. -/
def less : Number → Number → Bool
  | .nan, _ | _, .nan => false
  | .infinite n, .infinite m => n && !m
  | .infinite n, .finite .. => n
  | .finite .., .infinite m => !m
  | .finite a e, .finite b f =>
    let low := min e f
    a * scale 2 (e - low) < b * scale 2 (f - low)

/-- The natural number that a number is, if it is one. -/
def toNat? : Number → Option Nat
  | .finite m e => if 0 ≤ m && 0 ≤ e then some (m.toNat * scale 2 e) else none
  | _ => none

/-- The integer that a number is, if it is one. -/
def toInt? : Number → Option Int
  | .finite m e => if 0 ≤ e then some (m * scale 2 e) else none
  | _ => none

/-- The whole part of a number, with negative numbers as 0 and a ceiling. -/
def toNatUpTo (limit : Nat) : Number → Nat
  | .nan => 0
  | .infinite negative => if negative then 0 else limit
  | .finite m e =>
    let whole := if 0 ≤ e then m.toNat * scale 2 e else m.toNat / scale 2 (-e)
    min whole limit

end Number

end Retouch
