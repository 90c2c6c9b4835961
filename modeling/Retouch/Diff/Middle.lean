/-! A point halfway along a shortest way from one list to another. Two searches go
out, one from the front and one from the back. After `d` edits each knows, on every
diagonal, how far it can get; where they meet is the middle. -/

namespace Retouch.Diff

/-- The farthest place reached on each diagonal. -/
structure Frontier where
  offset : Nat
  reach : Array Nat

namespace Frontier

/-- A frontier for diagonals up to a bound, with nothing reached. -/
def start (bound : Nat) : Frontier := ⟨bound, Array.replicate (2 * bound + 1) 0⟩

def get (v : Frontier) (k : Int) : Nat := v.reach.getD (k + v.offset).toNat 0

def set (v : Frontier) (k : Int) (x : Nat) : Frontier :=
  { v with reach := v.reach.setIfInBounds (k + v.offset).toNat x }

/-- Where the next edit leads on diagonal `k`, from the better neighbour. -/
def next (v : Frontier) (d k : Int) : Nat :=
  if k = -d || (k ≠ d && v.get (k - 1) < v.get (k + 1)) then v.get (k + 1) else v.get (k - 1) + 1

end Frontier

variable {α : Type} [DecidableEq α]

/-- Go on along a diagonal as long as both lists agree. -/
def slide (a b : Array α) (x y : Nat) : Nat :=
  if h : x < a.size ∧ y < b.size then
    if a[x] = b[y] then slide a b (x + 1) (y + 1) else x
  else x
termination_by a.size - x

/-- The diagonals that `d` edits reach, from the top. -/
def diagonals (d : Nat) : List Int := (List.range (d + 1)).map fun (i : Nat) => (d : Int) - 2 * i

/-- How many edits a search may take. -/
def editBound (n m : Nat) : Nat := (n + m + 1) / 2 + 1

/-- One round from the front. It ends with the beginning of the last slide if the
other search is met. -/
def forward (a b : Array α) (back : Frontier) (d : Nat) (v : Frontier) :
    Except (Nat × Nat) Frontier :=
  let delta : Int := (a.size : Int) - b.size
  (diagonals d).foldlM (fun v k =>
    let x := v.next d k
    let y := ((x : Int) - k).toNat
    let far := slide a b x y
    if delta % 2 = 1 && (k - delta).natAbs < d && far + back.get (delta - k) ≥ a.size then
      .error (x, y)
    else .ok (v.set k far)) v

/-- One round from the back, on the reversed lists. It ends with the end of the
last slide if the other search is met. -/
def backward (a b : Array α) (front : Frontier) (d : Nat) (v : Frontier) :
    Except (Nat × Nat) Frontier :=
  let delta : Int := (a.size : Int) - b.size
  (diagonals d).foldlM (fun v k =>
    let far := slide a b (v.next d k) (((v.next d k : Nat) : Int) - k).toNat
    if delta % 2 = 0 && (k - delta).natAbs ≤ d && far + front.get (delta - k) ≥ a.size then
      .error (a.size - far, b.size - ((far : Int) - k).toNat)
    else .ok (v.set k far)) v

/-- A point in the middle: how much of each list lies before it. -/
def middle (a b : List α) : Option (Nat × Nat) :=
  let (old, new) := (a.toArray, b.toArray)
  let (oldRev, newRev) := (old.reverse, new.reverse)
  let bound := editBound old.size new.size
  let found := (List.range bound).foldlM (fun (front, back) d => do
    let front ← forward old new back d front
    let back ← backward oldRev newRev front d back
    pure (front, back)) (Frontier.start bound, Frontier.start bound)
  match found with
  | .error point => some point
  | .ok _ => none

end Retouch.Diff
