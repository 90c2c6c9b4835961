/-! Text in 16-bit units. Characters above U+FFFF take two units, the first from
the high and the second from the low surrogates; a surrogate without its partner
belongs to no text. -/

namespace Retouch.Text

def unitCount (c : Char) : Nat := if c.toNat < 0x10000 then 1 else 2

/-- The length of a text in 16-bit units. -/
def unitLength (s : String) : Nat := s.toList.foldr (fun c n => unitCount c + n) 0

def isHighUnit (u : Nat) : Bool := 0xD800 ≤ u && u ≤ 0xDBFF

def isLowUnit (u : Nat) : Bool := 0xDC00 ≤ u && u ≤ 0xDFFF

/-- The character that a pair of surrogates stands for. -/
def pairedChar (high low : Nat) : Char :=
  Char.ofNat (0x10000 + (high - 0xD800) * 0x400 + (low - 0xDC00))

/-- The units of one character. -/
def charUnits (c : Char) : List Nat :=
  if c.toNat < 0x10000 then [c.toNat]
  else [0xD800 + (c.toNat - 0x10000) / 0x400, 0xDC00 + (c.toNat - 0x10000) % 0x400]

/-- The text of a unit sequence; `none` when a surrogate stands alone. -/
def ofUnits : List Nat → Option (List Char)
  | [] => some []
  | u :: us =>
    if isHighUnit u then
      match us with
      | v :: vs => if isLowUnit v then (ofUnits vs).map (pairedChar u v :: ·) else none
      | [] => none
    else if isLowUnit u then none
    else (ofUnits us).map (Char.ofNat u :: ·)

end Retouch.Text
