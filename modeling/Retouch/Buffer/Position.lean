import Retouch.Text.Bytes

/-! Positions in a text: line and column, both counted from 0 in 32 bits, a column being
one character. The end of a line is a position of that line; the line feed after it is
not. So every place between two characters has exactly one position, as long as 32 bits
are enough to count it. -/

namespace Retouch.Buffer
open Text

/-- The `Position` of a buffer. -/
structure Position where
  line : UInt32
  column : UInt32
  deriving DecidableEq, Repr

namespace Position

def origin : Position := ⟨0, 0⟩

/-- Earlier in the text, or the same. -/
def le (p q : Position) : Bool := p.line < q.line || (p.line = q.line && p.column ≤ q.column)

/-- The text after the first `n` line feeds. -/
def afterLines : Nat → List Char → Option (List Char)
  | 0, cs => some cs
  | n + 1, cs =>
    match cs.dropWhile (· != '\n') with
    | [] => none
    | _ :: rest => afterLines n rest

/-- The line at the front of a text, without its line feed. -/
def firstLine (cs : List Char) : List Char := cs.takeWhile (· != '\n')

/-- The byte offset of a position in a text, if the text has that position (`offset_in`). -/
def offsetIn (p : Position) (cs : List Char) : Option Nat :=
  match afterLines p.line.toNat cs with
  | none => none
  | some rest =>
    if p.column.toNat ≤ (firstLine rest).length then
      some (byteLength cs - byteLength rest + byteLength ((firstLine rest).take p.column.toNat))
    else none

/-- The position just past the last character of a text (`end_of`). Of the counts of its
lines and columns only the low 32 bits are kept. -/
def endOf (cs : List Char) : Position :=
  ⟨.ofNat (cs.count '\n'), .ofNat (cs.reverse.takeWhile (· != '\n')).length⟩

def describe (p : Position) : String :=
  "Position \x7b line: " ++ toString p.line ++ ", column: " ++ toString p.column ++ " \x7d"

end Position

end Retouch.Buffer
