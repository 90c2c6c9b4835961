import Retouch.Text.Classes
import Retouch.Text.Units

/-! The value of a quoted string literal, as 16-bit units. A literal that is not
closed, holds a bare line end, or has an escape that means nothing has none. -/

namespace Retouch.Text

def hexValue? (c : Char) : Option Nat :=
  if isDigit c then some (c.toNat - '0'.toNat)
  else if 'a' ≤ c && c ≤ 'f' then some (c.toNat - 'a'.toNat + 10)
  else if 'A' ≤ c && c ≤ 'F' then some (c.toNat - 'A'.toNat + 10)
  else none

/-- The value of a non-empty list of hexadecimal digits. -/
def hexValue (cs : List Char) : Option Nat :=
  if cs.isEmpty then none
  else cs.foldl (fun acc c => acc.bind fun n => (hexValue? c).map (n * 16 + ·)) (some 0)

def isOctal (c : Char) : Bool := '0' ≤ c && c ≤ '7'

def octalValue (cs : List Char) : Nat := cs.foldl (fun n c => n * 8 + (c.toNat - '0'.toNat)) 0

/-- How many octal digits an escape takes: up to three below 0o400, else two. -/
def octalWidth (cs : List Char) : Nat :=
  let digits := (cs.take 3).takeWhile isOctal
  if digits.length = 3 && 255 < octalValue digits then 2 else digits.length

/-- The units of one code point. -/
def pointUnits (n : Nat) : List Nat :=
  if n < 0x10000 then [n] else [0xD800 + (n - 0x10000) / 0x400, 0xDC00 + (n - 0x10000) % 0x400]

/-- The value of the escape whose backslash stands before `cs`, and how many
characters of `cs` it takes. -/
def escapeValue : List Char → Option (List Nat × Nat)
  | [] => none
  | 'b' :: _ => some ([0x08], 1)
  | 't' :: _ => some ([0x09], 1)
  | 'n' :: _ => some ([0x0A], 1)
  | 'v' :: _ => some ([0x0B], 1)
  | 'f' :: _ => some ([0x0C], 1)
  | 'r' :: _ => some ([0x0D], 1)
  | '\r' :: '\n' :: _ => some ([], 2)
  | '\r' :: _ | '\n' :: _ | '\u2028' :: _ | '\u2029' :: _ => some ([], 1)
  | 'x' :: r => if 2 ≤ r.length then (hexValue (r.take 2)).map fun n => ([n], 3) else none
  | 'u' :: '{' :: r =>
    let digits := r.takeWhile (· != '}')
    if digits.length < r.length then
      match hexValue digits with
      | some n => if n ≤ 0x10FFFF then some (pointUnits n, digits.length + 3) else none
      | none => none
    else none
  | 'u' :: r => if 4 ≤ r.length then (hexValue (r.take 4)).map fun n => ([n], 5) else none
  | c :: r =>
    if isOctal c then
      let n := octalWidth (c :: r)
      some ([octalValue ((c :: r).take n)], n)
    else some (charUnits c, 1)

/-- The units of a literal past its opening quote, up to the closing quote, which
has to be the last character. -/
def literalUnits (quote : Char) : List Char → Option (List Nat)
  | [] => none
  | c :: r =>
    if c = quote then (if r.isEmpty then some [] else none)
    else if c = '\n' || c = '\r' then none
    else if c = '\\' then
      match escapeValue r with
      | some (units, n) => (literalUnits quote (r.drop n)).map (units ++ ·)
      | none => none
    else (literalUnits quote r).map (charUnits c ++ ·)
termination_by cs => cs.length
decreasing_by
  · simp only [List.length_drop, List.length_cons]
    omega
  · simp

end Retouch.Text
