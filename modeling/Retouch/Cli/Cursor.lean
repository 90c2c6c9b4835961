import Retouch.Cli.Command

/-! Cursors on the command line: a line and a column with a colon between. -/

namespace Retouch.Cli

/-- Why a text is no number of 32 bits. -/
inductive NumberFault where
  | empty
  | digit
  | large
  deriving DecidableEq, Repr

def NumberFault.message : NumberFault → String
  | empty => "cannot parse integer from empty string"
  | digit => "invalid digit found in string"
  | large => "number too large to fit in target type"

/-- One more digit. The first fault counts. -/
def addDigit (n : Nat) (c : Char) : Except NumberFault Nat :=
  if Text.isDigit c then
    let m := n * 10 + (c.toNat - '0'.toNat)
    if m < UInt32.size then .ok m else .error .large
  else .error .digit

/-- A number in decimal digits, with or without a plus. -/
def readNumber (cs : List Char) : Except NumberFault UInt32 :=
  match cs with
  | [] => .error .empty
  | '+' :: d :: ds => UInt32.ofNat <$> (d :: ds).foldlM addDigit 0
  | ds => UInt32.ofNat <$> ds.foldlM addDigit 0

inductive CursorFault where
  | shape (text : String)
  | line (text : String) (fault : NumberFault)
  | column (text : String) (fault : NumberFault)
  | zeroLine
  deriving DecidableEq, Repr

def CursorFault.message : CursorFault → String
  | shape text => "expected LINE:COL, got '" ++ text ++ "'"
  | line text fault => "invalid line '" ++ text ++ "': " ++ fault.message
  | column text fault => "invalid column '" ++ text ++ "': " ++ fault.message
  | zeroLine => "line numbers start at 1"

/-- Lines count from 1, columns from 0 (`parse_cursor`). Blanks around the numbers do no
harm. -/
def readCursor (text : String) : Except CursorFault Cursor :=
  match text.toList.span (· ≠ ':') with
  | (_, []) => .error (.shape text)
  | (line, _ :: column) =>
    match readNumber (Text.trim line), readNumber (Text.trim column) with
    | .error f, _ => .error (.line (String.ofList line) f)
    | .ok _, .error f => .error (.column (String.ofList column) f)
    | .ok l, .ok c => if l = 0 then .error .zeroLine else .ok ⟨l, c⟩

end Retouch.Cli
