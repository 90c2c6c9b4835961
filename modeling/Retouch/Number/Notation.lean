import Retouch.Number.Digits

/-! How numbers are written: with the digits that identify them, positionally from a
millionth up to 21 places before the point, and otherwise with a signed exponent.
Integers have no point. -/

namespace Retouch.Number

def zeros (n : Nat) : String := String.ofList (List.replicate n '0')

/-- The largest number of places before the point in positional notation. -/
def widestWhole : Int := 21

/-- The largest number of zeros after the point before an exponent is used. -/
def deepestZeros : Int := 6

def exponentText (e : Int) : String :=
  "e" ++ (if e < 0 then "-" else "+") ++ toString e.natAbs

def Decimal.toText (d : Decimal) : String :=
  let digits := (toString d.digits).toList
  let count : Int := digits.length
  let point := count + d.shift
  if count ≤ point && point ≤ widestWhole then
    String.ofList digits ++ zeros (point - count).toNat
  else if 0 < point && point ≤ widestWhole then
    String.ofList (digits.take point.toNat) ++ "." ++ String.ofList (digits.drop point.toNat)
  else if -deepestZeros < point && point ≤ 0 then
    "0." ++ zeros (-point).toNat ++ String.ofList digits
  else
    let rest := digits.drop 1
    String.ofList (digits.take 1) ++
      (if rest.isEmpty then "" else "." ++ String.ofList rest) ++ exponentText (point - 1)

def toText : Number → String
  | .nan => "NaN"
  | .infinite negative => if negative then "-Infinity" else "Infinity"
  | .finite m e =>
    if m = 0 then "0"
    else (if m < 0 then "-" else "") ++ (shortest m.natAbs e).toText

end Retouch.Number
