import Retouch.Number.Basic
import Retouch.Text.Classes

/-! Reading a number from a whole text. Blanks around it do not count and an
empty text is 0. A text that is no number reads as NaN. -/

namespace Retouch.Number
open Text

/-- Blanks around numbers: those of text, and the byte order mark; but not the
next-line control. -/
def isMargin (c : Char) : Bool := (isBlank c && c != '\u0085') || c == '\ufeff'

def trimMargins (cs : List Char) : List Char :=
  ((cs.dropWhile isMargin).reverse.dropWhile isMargin).reverse

def digitValue (c : Char) : Nat :=
  if isDigit c then c.toNat - '0'.toNat
  else if 'a' ≤ c && c ≤ 'z' then c.toNat - 'a'.toNat + 10
  else if 'A' ≤ c && c ≤ 'Z' then c.toNat - 'A'.toNat + 10
  else 36

/-- The value of a digit string in a base; `none` for an empty string or a
character that is no digit of it. -/
def digitsValue? (base : Nat) (cs : List Char) : Option Nat :=
  if cs.isEmpty || cs.any (fun c => base ≤ digitValue c) then none
  else some (cs.foldl (fun n c => n * base + digitValue c) 0)

def digitsValue (cs : List Char) : Nat := cs.foldl (fun n c => n * 10 + digitValue c) 0

/-- The exponent part of a decimal, with its mark. -/
def exponentValue? : List Char → Option Int
  | [] => some 0
  | e :: r =>
    if e = 'e' || e = 'E' then
      match r with
      | '+' :: ds => (digitsValue? 10 ds).map Int.ofNat
      | '-' :: ds => (digitsValue? 10 ds).map fun n => -(n : Int)
      | ds => (digitsValue? 10 ds).map Int.ofNat
    else none

/-- An unsigned decimal: digits on at least one side of an optional point. -/
def decimal? (negative : Bool) (cs : List Char) : Option Number :=
  let whole := cs.takeWhile isDigit
  let afterWhole := cs.dropWhile isDigit
  let (fraction, tail) :=
    match afterWhole with
    | '.' :: r => (r.takeWhile isDigit, r.dropWhile isDigit)
    | _ => ([], afterWhole)
  if whole.isEmpty && fraction.isEmpty then none
  else
    (exponentValue? tail).map fun e =>
      ofDecimal negative (digitsValue (whole ++ fraction)) (e - fraction.length)

def magnitude? (negative : Bool) (cs : List Char) : Option Number :=
  if cs = "Infinity".toList then some (.infinite negative) else decimal? negative cs

/-- The bits per digit that a mark after a leading zero announces. -/
def markedBits? (c : Char) : Option Nat :=
  if c = 'x' || c = 'X' then some 4
  else if c = 'o' || c = 'O' then some 3
  else if c = 'b' || c = 'B' then some 1
  else none

/-- Read digits of `bits` bits while the value fits a word of 64 bits. The digits
after those are only counted. -/
def wordValue (bits : Nat) : List Char → Nat × Nat → Nat × Nat
  | [], acc => acc
  | c :: cs, (n, skipped) =>
    if n < scale 2 (64 - bits) then wordValue bits cs (n * scale 2 bits + digitValue c, skipped)
    else wordValue bits cs (n, skipped + 1)

/-- The number that digits of `bits` bits stand for. The word is rounded first and
scaled for the digits after it then. -/
def marked? (bits : Nat) (cs : List Char) : Option Number :=
  if cs.isEmpty || cs.any (fun c => scale 2 bits ≤ digitValue c) then none
  else
    let (word, skipped) := wordValue bits cs (0, 0)
    some (.ofNat (((ofNat word).toNat?).getD 0 * scale 2 (bits * skipped)))

def signed? : List Char → Option Number
  | '-' :: r => magnitude? true r
  | '+' :: r => magnitude? false r
  | cs => magnitude? false cs

/-- The number that a text reads as. -/
def ofText (s : String) : Number :=
  let cs := trimMargins s.toList
  let read :=
    match cs with
    | [] => some zero
    | '0' :: mark :: r =>
      match markedBits? mark with
      | some bits => marked? bits r
      | none => signed? cs
    | _ => signed? cs
  read.getD .nan

end Retouch.Number
