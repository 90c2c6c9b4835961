/-! Edit scripts: how one list becomes another. -/

namespace Retouch.Diff

inductive Segment (α : Type) where
  | keep (xs : List α)
  | drop (xs : List α)
  | add (xs : List α)
  deriving DecidableEq, Repr

namespace Segment

variable {α : Type}

/-- What a segment leaves behind. -/
def after : Segment α → List α
  | keep xs => xs
  | drop _ => []
  | add xs => xs

def items : Segment α → List α
  | keep xs => xs
  | drop xs => xs
  | add xs => xs

def isDrop : Segment α → Bool
  | drop _ => true
  | _ => false

def isAdd : Segment α → Bool
  | add _ => true
  | _ => false

end Segment

abbrev Script (α : Type) := List (Segment α)

namespace Script

variable {α : Type}

/-- Keep what there is to keep. -/
def keeping (xs : List α) : Script α := if xs.isEmpty then [] else [.keep xs]

end Script

end Retouch.Diff
