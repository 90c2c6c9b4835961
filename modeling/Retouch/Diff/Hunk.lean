import Retouch.Diff.Lines
import Retouch.Diff.Tidy

/-! Unified differences. Changes are shown in hunks with up to three kept lines
around them; changes that are at most six kept lines apart share a hunk. -/

namespace Retouch.Diff

/-- A stretch of kept lines, or of lines that give way to others. -/
inductive Block where
  | same (ls : List Line)
  | change (old new : List Line)
  deriving DecidableEq, Repr

namespace Block

def oldLength : Block → Nat
  | same ls => ls.length
  | change old _ => old.length

def newLength : Block → Nat
  | same ls => ls.length
  | change _ new => new.length

/-- Add a segment at the front, to the block that it belongs to. -/
def push : Segment Line → List Block → List Block
  | .keep xs, same ls :: rest => same (xs ++ ls) :: rest
  | .keep xs, rest => same xs :: rest
  | .drop xs, change old new :: rest => change (xs ++ old) new :: rest
  | .drop xs, rest => change xs [] :: rest
  | .add xs, change old new :: rest => change old (xs ++ new) :: rest
  | .add xs, rest => change [] xs :: rest

def ofScript (s : Script Line) : List Block := s.foldr push []

end Block

/-- Blocks that are shown together, and how many lines lie before them. -/
structure Hunk where
  oldStart : Nat
  newStart : Nat
  blocks : List Block
  deriving DecidableEq, Repr

/-- Kept lines that are shown before and after a change. -/
def radius : Nat := 3

/-- Blocks with few enough kept lines at the end. -/
def trimBack (bs : List Block) : List Block :=
  match bs.getLast? with
  | some (.same ls) => bs.dropLast ++ [.same (ls.take radius)]
  | _ => bs

/-- Kept lines that are too many at the front, and the rest. -/
def trimFront : List Block → Nat × List Block
  | .same ls :: rest => (ls.length - radius, .same (ls.drop (ls.length - radius)) :: rest)
  | bs => (0, bs)

/-- Add a block to the hunk that is being made. -/
def Hunk.extend (h : Hunk) (b : Block) : Hunk := { h with blocks := h.blocks ++ [b] }

def Hunk.oldLength (h : Hunk) : Nat := h.blocks.foldr (fun b n => b.oldLength + n) 0

def Hunk.newLength (h : Hunk) : Nat := h.blocks.foldr (fun b n => b.newLength + n) 0

/-- Whether a hunk shows any change. -/
def Hunk.hasChange (h : Hunk) : Bool :=
  h.blocks.any fun
    | .change _ _ => true
    | .same _ => false

/-- Cut blocks into hunks wherever many lines are kept. -/
def cut (h : Hunk) : List Block → List Hunk
  | [] => if h.hasChange then [h] else []
  | .same ls :: rest =>
    if ls.length > 2 * radius then
      let skip := ls.length - radius
      let now := h.extend (.same (ls.take radius))
      now :: cut ⟨h.oldStart + h.oldLength + skip, h.newStart + h.newLength + skip,
        [.same (ls.drop skip)]⟩ rest
    else cut (h.extend (.same ls)) rest
  | b :: rest => cut (h.extend b) rest

def hunks (bs : List Block) : List Hunk :=
  let (skip, bs) := trimFront (trimBack bs)
  cut ⟨skip, skip, []⟩ bs

/-! ### Printing -/

/-- A line behind its mark. -/
def printLine (mark : Char) (line : Line) : String :=
  String.ofList (mark :: line) ++ if isEnded line then "" else "\n\\ No newline at end of file\n"

def printLines (mark : Char) (ls : List Line) : String := String.join (ls.map (printLine mark))

def Block.print : Block → String
  | same ls => printLines ' ' ls
  | change old new => printLines '-' old ++ printLines '+' new

/-- Lines by number: the first and how many, or only the first if there is one.
An empty range is named by the line before it. -/
def printRange (start length : Nat) : String :=
  if length = 1 then toString (start + 1)
  else if length = 0 then toString start ++ ",0"
  else toString (start + 1) ++ "," ++ toString length

def Hunk.print (h : Hunk) : String :=
  "@@ -" ++ printRange h.oldStart h.oldLength ++ " +" ++ printRange h.newStart h.newLength ++
    " @@\n" ++ String.join (h.blocks.map Block.print)

/-- The unified difference of two texts (`unified_diff`); empty if there is none. -/
def unified (name old new : String) : String :=
  match hunks (Block.ofScript (tidy (between (lines old.toList) (lines new.toList)))) with
  | [] => ""
  | hs => "--- old/" ++ name ++ "\n+++ new/" ++ name ++ "\n" ++ String.join (hs.map Hunk.print)

end Retouch.Diff
