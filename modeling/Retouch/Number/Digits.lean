import Retouch.Number.Basic

/-! Decimal digits that identify a double. The reals that round to a double form an
interval, with its ends when the significand is even. For one, two, up to seventeen
digits the value is rounded to that many, a half to the even neighbour; the first
decimal that lies in the interval wins. All comparisons are exact. -/

namespace Retouch.Number

/-- The significand and exponent of a positive finite double `m * 2 ^ e`, with
the significand as wide as the format allows. -/
def significand (m : Nat) (e : Int) : Nat × Int :=
  let wide : Int := e - (52 - Nat.log2 m : Nat)
  let q := if wide < leastExponent then leastExponent else wide
  (m * scale 2 (e - q), q)

/-- A decimal: the integer `digits` times a power of ten. -/
structure Decimal where
  digits : Nat
  shift : Int
  deriving DecidableEq, Repr

/-- A value in quarter units of the last binary place: `quarters * 2 ^ unit`. -/
structure Quarters where
  quarters : Nat
  unit : Int

/-- The two sides of a comparison, over a common denominator. -/
def crossed (d : Decimal) (v : Quarters) : Nat × Nat :=
  (d.digits * scale 10 d.shift * scale 2 (-v.unit),
    v.quarters * scale 2 v.unit * scale 10 (-d.shift))

/-- The reals that round to a double, in quarter units. -/
structure Interval where
  low : Nat
  value : Nat
  high : Nat
  unit : Int
  closed : Bool

/-- The gap below a power of two is half as wide, except at the least exponent. -/
def interval (m : Nat) (q : Int) : Interval :=
  let gapBelow := if m = scale 2 52 && q ≠ leastExponent then 1 else 2
  ⟨4 * m - gapBelow, 4 * m, 4 * m + 2, q - 2, m % 2 = 0⟩

def Interval.holds (i : Interval) (d : Decimal) : Bool :=
  let (x, low) := crossed d ⟨i.low, i.unit⟩
  let (y, high) := crossed d ⟨i.high, i.unit⟩
  if i.closed then low ≤ x && y ≤ high else low < x && y < high

/-- The number of decimal digits of a positive integer. -/
def digitCount (n : Nat) : Nat := (Nat.toDigits 10 n).length

/-- The exponent of the leading decimal digit of `a / b`. -/
def leadingExponent (a b : Nat) : Int :=
  if b ≤ a then digitCount (a / b) - 1
  else
    let j := digitCount (b / a)
    if b ≤ a * scale 10 (j - 1) then 1 - (j : Int) else -(j : Int)

/-- The decimal nearest to `a / b` on the grid `10 ^ shift`, if it identifies the
double. -/
def onGrid (i : Interval) (a b : Nat) (shift : Int) : Option Decimal :=
  let d : Decimal := ⟨roundDiv (a * scale 10 (-shift)) (b * scale 10 shift), shift⟩
  if i.holds d then some d else none

/-- Move trailing zeros of the digits into the exponent. -/
def Decimal.strip (d : Decimal) : Decimal :=
  if _h : d.digits ≠ 0 ∧ d.digits % 10 = 0 then
    Decimal.strip ⟨d.digits / 10, d.shift + 1⟩
  else d
termination_by d.digits
decreasing_by omega

/-- The digits for the positive double `m * 2 ^ e`. Seventeen always suffice; past
them the exact value would stand. -/
def shortest (m : Nat) (e : Int) : Decimal :=
  let (s, q) := significand m e
  let a := s * scale 2 q
  let b := scale 2 (-q)
  let lead := leadingExponent a b
  let grids := (List.range 17).map fun (n : Nat) => lead - n
  match grids.findSome? (onGrid (interval s q) a b) with
  | some d => d.strip
  | none => Decimal.strip ⟨a * scale 5 (-q), -((-q).toNat : Int)⟩

end Retouch.Number
