import Retouch.Diff.Shortest

/-! Tidying a script. A change next to one of the other kind may change places with it,
and an add between equal neighbours can stand in several places. Each change is moved
up as far as it goes, joining its like on the way, and then down again. First all
drops are moved, then all adds. Kept items are exchanged only with what a change
leaves behind, so they stop a drop. -/

namespace Retouch.Diff

variable {α : Type}

/-- A script with one segment in focus: what is above, nearest first, and below. -/
structure Focus (α : Type) where
  above : Script α
  this : Segment α
  below : Script α

namespace Segment

/-- A segment of the same kind. -/
def withItems (s : Segment α) (xs : List α) : Segment α :=
  match s with
  | keep _ => keep xs
  | drop _ => drop xs
  | add _ => add xs

def sameKind : Segment α → Segment α → Bool
  | keep _, keep _ => true
  | drop _, drop _ => true
  | add _, add _ => true
  | _, _ => false

end Segment

/-- Put kept items in front of a script. -/
def keepAhead (xs : List α) : Script α → Script α
  | .keep ys :: rest => .keep (xs ++ ys) :: rest
  | rest => .keep xs :: rest

/-- Put kept items at the end of a script that is written backwards. -/
def keepBehind (xs : List α) : Script α → Script α
  | .keep ys :: rest => .keep (ys ++ xs) :: rest
  | rest => .keep xs :: rest

namespace Focus

/-- The items of a script and its segments, counted together. -/
def room (s : Script α) : Nat := s.foldr (fun seg n => seg.items.length + 1 + n) 0

@[simp] theorem room_cons (seg : Segment α) (s : Script α) :
    room (seg :: s) = seg.items.length + 1 + room s := by
  simp [room]

theorem room_keeping_le (xs : List α) (s : Script α) :
    room (.keeping xs ++ s) ≤ xs.length + 1 + room s := by
  cases xs <;> simp [Script.keeping, Segment.items]

variable [DecidableEq α]

/-- Move a change up, past what it can be exchanged with. -/
def up : Script α → Segment α → Script α → Focus α
  | [], seg, below => ⟨[], seg, below⟩
  | .keep ys :: rest, seg, below =>
    let xs := seg.after
    let s := sharedEnd ys xs
    if s = 0 then if ys = [] then up rest seg below else ⟨.keep ys :: rest, seg, below⟩
    else
      up (.keeping (ys.take (ys.length - s)) ++ rest)
        (seg.withItems (ys.drop (ys.length - s) ++ xs.take (xs.length - s)))
        (keepAhead (xs.drop (xs.length - s)) below)
  | other :: rest, seg, below =>
    if other.sameKind seg then up rest (other.withItems (other.items ++ seg.items)) below
    else up rest seg (other :: below)
termination_by above => room above
decreasing_by
  · simp
  · have := sharedEnd_le ys seg.after
    have := room_keeping_le (ys.take (ys.length - sharedEnd ys seg.after)) rest
    simp only [room_cons, Segment.items, List.length_take, s, xs] at *
    omega
  · simp
  · simp

/-- Move a change down, past what it can be exchanged with. -/
def down (above : Script α) (seg : Segment α) : Script α → Focus α
  | [] => ⟨above, seg, []⟩
  | .keep ys :: rest =>
    let xs := seg.after
    let s := shared ys xs
    if s = 0 then if ys = [] then down above seg rest else ⟨above, seg, .keep ys :: rest⟩
    else
      down (keepBehind (ys.take s) above) (seg.withItems (xs.drop s ++ ys.take s))
        (.keeping (ys.drop s) ++ rest)
  | other :: rest =>
    if other.sameKind seg then down above (other.withItems (seg.items ++ other.items)) rest
    else down (other :: above) seg rest
termination_by below => room below
decreasing_by
  · simp
  · have := shared_le ys seg.after
    have := room_keeping_le (ys.drop (shared ys seg.after)) rest
    simp only [room_cons, Segment.items, List.length_drop, s, xs] at *
    omega
  · simp
  · simp

def settled (f : Focus α) : Focus α :=
  let f := up f.above f.this f.below
  down f.above f.this f.below

end Focus

variable [DecidableEq α]

/-- Move the segments that `test` chooses, from the top to the bottom. After a
number of moves the rest is left as it stands. -/
def settleWith (test : Segment α → Bool) : Nat → Script α → Script α → Script α
  | 0, done, todo => done.reverse ++ todo
  | _ + 1, done, [] => done.reverse
  | n + 1, done, seg :: todo =>
    if test seg then
      let f := (Focus.mk done seg todo).settled
      settleWith test n (f.this :: f.above) f.below
    else settleWith test n (seg :: done) todo

/-- Every segment is passed once, and again whenever two have joined above it. -/
def settle (test : Segment α → Bool) (s : Script α) : Script α :=
  settleWith test (2 * (s.length + 1) * (s.length + 1)) [] s

def tidy (s : Script α) : Script α := settle Segment.isAdd (settle Segment.isDrop s)

end Retouch.Diff
