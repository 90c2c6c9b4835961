import Retouch.Buffer.Position

/-! Edits of a text: what stands between two positions gives way to new text, or
nothing changes at all. -/

namespace Retouch.Buffer
open Text

/-- Replace the text between two positions (`TextEdit`). -/
structure Edit where
  start : Position
  stop : Position
  text : String
  deriving DecidableEq, Repr

inductive EditError where
  | reversed (start stop : Position)
  | outside (start stop : Position)
  deriving DecidableEq, Repr

def EditError.message : EditError → String
  | reversed start stop => "edit range is reversed: " ++ start.describe ++ ".." ++ stop.describe
  | outside start stop =>
    "edit range " ++ start.describe ++ ".." ++ stop.describe ++ " is outside the buffer"

def Edit.applyTo (e : Edit) (cs : List Char) : Except EditError (List Char) :=
  if e.start.le e.stop then
    match e.start.offsetIn cs, e.stop.offsetIn cs with
    | some a, some b => .ok (takeBytes a cs ++ e.text.toList ++ dropBytes b cs)
    | _, _ => .error (.outside e.start e.stop)
  else .error (.reversed e.start e.stop)

/-- The edit that replaces a whole text. -/
def Edit.whole (cs : List Char) (text : String) : Edit := ⟨.origin, .endOf cs, text⟩

/-- A named text in memory (`MemoryBuffer`). -/
structure TextBuffer where
  name : String
  text : String
  deriving DecidableEq, Repr

/-- A buffer after an edit; a failed edit leaves no trace. -/
def TextBuffer.apply (b : TextBuffer) (e : Edit) : Except EditError TextBuffer :=
  match e.applyTo b.text.toList with
  | .ok cs => .ok { b with text := String.ofList cs }
  | .error err => .error err

def TextBuffer.end (b : TextBuffer) : Position := .endOf b.text.toList

/-- Replace the whole text in one edit (`replace_all`). -/
def TextBuffer.replaceAll (b : TextBuffer) (text : String) : Except EditError TextBuffer :=
  b.apply (.whole b.text.toList text)

end Retouch.Buffer
