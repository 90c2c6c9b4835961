import Retouch.Number.Notation

/-! Reading written numbers in two steps. The digits are rounded to a double, then
scaled by a power of ten and rounded again. Integers survive that; a fraction may
come out one place next to the nearest double, and so reach an integer it was just
below. -/

namespace Retouch.Number

/-- The largest power of ten that is a double, by its exponent. -/
def largestPower : Nat := 308

def Decimal.rough (d : Decimal) : Number :=
  let whole := (ofNat d.digits).toNat?.getD 0
  let power := (ofDecimal false 1 d.shift.natAbs).toNat?.getD 0
  if largestPower < d.shift.natAbs then zero
  else if 0 ≤ d.shift then ofNat (whole * power)
  else ofRatio false whole power

/-- A number as it is read back. Only positive fractions can change. -/
def reread (n : Number) : Number :=
  match n with
  | .finite m e => if 0 ≤ e || m ≤ 0 then n else (shortest m.toNat e).rough
  | n => n

end Retouch.Number
