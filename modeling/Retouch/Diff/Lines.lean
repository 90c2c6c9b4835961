/-! The lines of a text, each with its end. A line ends after a line feed, after a
carriage return, or after both in this order; the last line may lack an end. -/

namespace Retouch.Diff

abbrev Line := List Char

/-- Put a character in front of the first line. -/
def glue (c : Char) : List Line → List Line
  | [] => [[c]]
  | line :: rest => (c :: line) :: rest

def lines : List Char → List Line
  | [] => []
  | '\r' :: '\n' :: cs => ['\r', '\n'] :: lines cs
  | c :: cs => if c = '\n' || c = '\r' then [c] :: lines cs else glue c (lines cs)

/-- Whether a line has its end. -/
def isEnded (line : Line) : Bool :=
  match line.getLast? with
  | some c => c = '\n' || c = '\r'
  | none => false

end Retouch.Diff
