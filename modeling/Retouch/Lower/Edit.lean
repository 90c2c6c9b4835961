import Retouch.Text.Bytes

/-! Replacing stretches of a text. The edits of a list stand in order and do not
overlap; offsets count bytes of the text before any edit. -/

namespace Retouch.Lower
open Retouch.Text

structure Edit where
  start : Nat
  stop : Nat
  text : String
  deriving DecidableEq, Repr

/-- The text from offset `cursor` on, with the stretches of the edits replaced (the last
loop of `lower`). -/
def splice (cursor : Nat) (rest : List Char) : List Edit → List Char
  | [] => rest
  | e :: es =>
    takeBytes (e.start - cursor) rest ++ e.text.toList ++
      splice e.stop (dropBytes (e.stop - cursor) rest) es

@[simp] theorem splice_nil (cursor : Nat) (rest : List Char) : splice cursor rest [] = rest := rfl

end Retouch.Lower
