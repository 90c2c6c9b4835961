import Retouch.Value

/-! Reading data from the notation of the wire. -/

namespace Retouch.Json

abbrev Reader (α : Type) := List Char → Option (α × List Char)

def skipSpace (cs : List Char) : List Char :=
  cs.dropWhile fun c => c = ' ' || c = '\n' || c = '\r' || c = '\t'

def hexValue? (c : Char) : Option Nat :=
  if Text.isDigit c then some (c.toNat - '0'.toNat)
  else if 'a' ≤ c && c ≤ 'f' then some (c.toNat - 'a'.toNat + 10)
  else if 'A' ≤ c && c ≤ 'F' then some (c.toNat - 'A'.toNat + 10)
  else none

/-- The unit that four hexadecimal digits stand for. -/
def hexUnit : Reader Nat
  | a :: b :: c :: d :: rest =>
    match hexValue? a, hexValue? b, hexValue? c, hexValue? d with
    | some a, some b, some c, some d => some (((a * 16 + b) * 16 + c) * 16 + d, rest)
    | _, _, _, _ => none
  | _ => none

/-- The unit that an escape stands for, from behind the backslash. -/
def escaped : Reader Nat
  | '"' :: cs => some (0x22, cs)
  | '\\' :: cs => some (0x5c, cs)
  | '/' :: cs => some (0x2f, cs)
  | 'b' :: cs => some (0x08, cs)
  | 'f' :: cs => some (0x0c, cs)
  | 'n' :: cs => some (0x0a, cs)
  | 'r' :: cs => some (0x0d, cs)
  | 't' :: cs => some (0x09, cs)
  | 'u' :: cs => hexUnit cs
  | _ => none

/-- The units of a text up to its closing quote. -/
def units : Nat → Reader (List Nat)
  | 0, _ => none
  | _, [] => none
  | fuel + 1, c :: rest =>
    if c = '"' then some ([], rest)
    else if c = '\\' then
      (escaped rest).bind fun (u, rest') => (units fuel rest').map fun (us, r) => (u :: us, r)
    else if c < ' ' then none
    else (units fuel rest).map fun (us, r) => (Text.charUnits c ++ us, r)

/-- A quoted text, from behind its opening quote. -/
def text (cs : List Char) : Option (Wide × List Char) :=
  (units (cs.length + 1) cs).map fun (us, rest) => (.ofUnits us, rest)

def isNumberChar (c : Char) : Bool :=
  Text.isDigit c || c = '-' || c = '+' || c = '.' || c = 'e' || c = 'E'

def number (cs : List Char) : Option (Value × List Char) :=
  let word := cs.takeWhile isNumberChar
  match Number.ofText (String.ofList word) with
  | .nan => none
  | n => if word.isEmpty then none else some (.number n, cs.drop word.length)

def items (value : Reader Value) : Nat → Reader (List Value)
  | 0, _ => none
  | fuel + 1, cs =>
    (value cs).bind fun (v, rest) =>
      match skipSpace rest with
      | ',' :: more => (items value fuel more).map fun (vs, r) => (v :: vs, r)
      | ']' :: r => some ([v], r)
      | _ => none

def fields (value : Reader Value) : Nat → Reader (List (String × Value))
  | 0, _ => none
  | fuel + 1, cs =>
    match skipSpace cs with
    | '"' :: body =>
      (text body).bind fun (key, rest) =>
        match skipSpace rest with
        | ':' :: more =>
          (value more).bind fun (v, rest') =>
            match skipSpace rest' with
            | ',' :: more' =>
              (fields value fuel more').map fun (fs, r) => ((key.shown, v) :: fs, r)
            | '\x7d' :: r => some ([(key.shown, v)], r)
            | _ => none
        | _ => none
    | _ => none

/-- A value of bounded depth. -/
def value : Nat → Reader Value
  | 0, _ => none
  | depth + 1, cs =>
    match skipSpace cs with
    | '"' :: body => (text body).map fun (w, r) => (.ofWide w, r)
    | '[' :: rest =>
      match skipSpace rest with
      | ']' :: r => some (.array [], r)
      | rest' => (items (value depth) (rest'.length + 1) rest').map fun (vs, r) => (.array vs, r)
    | '\x7b' :: rest =>
      match skipSpace rest with
      | '\x7d' :: r => some (.object [], r)
      | rest' =>
        (fields (value depth) (rest'.length + 1) rest').map fun (fs, r) => (Value.ofFields fs, r)
    | 'n' :: 'u' :: 'l' :: 'l' :: r => some (.null, r)
    | 't' :: 'r' :: 'u' :: 'e' :: r => some (.bool true, r)
    | 'f' :: 'a' :: 'l' :: 's' :: 'e' :: r => some (.bool false, r)
    | cs' => number cs'

/-- The one value that a text holds. -/
def read (s : String) : Option Value :=
  match value (s.length + 1) s.toList with
  | some (v, rest) => if (skipSpace rest).isEmpty then some v else none
  | none => none

end Retouch.Json
