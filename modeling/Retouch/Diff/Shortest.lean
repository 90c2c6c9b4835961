import Retouch.Diff.Middle
import Retouch.Diff.Script

/-! A shortest script between two lists: what they share at both ends is kept, and
the rest is cut in two at a point in the middle. -/

namespace Retouch.Diff

variable {α : Type} [DecidableEq α]

/-- How long two lists agree. -/
def shared : List α → List α → Nat
  | a :: as, b :: bs => if a = b then shared as bs + 1 else 0
  | _, _ => 0

theorem shared_le (a b : List α) : shared a b ≤ a.length ∧ shared a b ≤ b.length := by
  fun_induction shared a b with
  | case1 a as bs ih => simp [ih]
  | case2 => simp
  | case3 => simp

/-- How long two lists agree at their ends. -/
def sharedEnd (a b : List α) : Nat := shared a.reverse b.reverse

theorem sharedEnd_le (a b : List α) : sharedEnd a b ≤ a.length ∧ sharedEnd a b ≤ b.length := by
  simpa [sharedEnd] using shared_le a.reverse b.reverse

/-- Two lists without what they share at their ends. -/
structure Trimmed (α : Type) where
  front : List α
  old : List α
  new : List α
  back : List α

def Trimmed.of (a b : List α) : Trimmed α :=
  let p := shared a b
  let (a', b') := (a.drop p, b.drop p)
  let s := sharedEnd a' b'
  ⟨a.take p, a'.take (a'.length - s), b'.take (b'.length - s), a'.drop (a'.length - s)⟩

theorem Trimmed.of_length (a b : List α) :
    (of a b).old.length + (of a b).new.length ≤ a.length + b.length := by
  simp only [of, List.length_take, List.length_drop]
  omega

/-- A shortest script from one list to the other. -/
def between (a b : List α) : Script α :=
  let t := Trimmed.of a b
  let inner : Script α :=
    if t.old = [] ∧ t.new = [] then []
    else if t.new = [] then [.drop t.old]
    else if t.old = [] then [.add t.new]
    else
      match middle t.old t.new with
      | some (x, y) =>
        if 0 < x + y ∧ x + y < t.old.length + t.new.length then
          between (t.old.take x) (t.new.take y) ++ between (t.old.drop x) (t.new.drop y)
        else [.drop t.old, .add t.new]
      | none => [.drop t.old, .add t.new]
  .keeping t.front ++ (inner ++ .keeping t.back)
termination_by a.length + b.length
decreasing_by
  all_goals
    have := Trimmed.of_length a b
    have := List.length_pos_iff.mpr ‹¬t.old = []›
    have := List.length_pos_iff.mpr ‹¬t.new = []›
    simp only [t, List.length_take, List.length_drop] at *
    omega

end Retouch.Diff
