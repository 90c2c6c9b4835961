import Retouch.Proofs.Places

/-! What paths lead to depends on the shape of a disk: on its directories, its links
and the names of its files, and not on what the files hold. -/

namespace Retouch.Files

/-- What a tree is at its root, without what it holds. -/
inductive Shape where
  | file
  | link (target : OsString)
  | dir
  deriving DecidableEq, Repr

def Tree.shape : Tree → Shape
  | .file _ => .file
  | .link target => .link target
  | .dir _ => .dir

/-- The same directories, links and file names. -/
structure Disk.SameShape (d d' : Disk) : Prop where
  cwd : d'.cwd = d.cwd
  shape : ∀ place, (d'.tree.at? place).map Tree.shape = (d.tree.at? place).map Tree.shape

/-- A step of a walk depends on the shapes of two places. -/
theorem walk_cons_shape (t : Tree) (follow : Bool) (budget : Nat) (here : List OsString)
    (name : OsString) (rest : List OsString) :
    walk t follow budget here (name :: rest) =
      match (t.at? here).map Tree.shape with
      | some .dir =>
        if name = Path.dot then walk t follow budget here rest
        else if name = Path.dots then walk t follow budget here.dropLast rest
        else
          match (t.at? (here ++ [name])).map Tree.shape with
          | none => if rest.isEmpty then .ok (.gap here name) else .error .notFound
          | some (.link target) =>
            if rest.isEmpty && !follow then .ok (.node (here ++ [name]))
            else
              match budget with
              | 0 => .error .tooManyLinks
              | budget + 1 =>
                if target = [] then .error .notFound
                else
                  walk t follow budget (if Path.isAbsolute target then [] else here)
                    (steps target ++ rest)
          | some _ => walk t follow budget (here ++ [name]) rest
      | _ => .error .notDirectory := by
  rw [walk_cons]
  cases hat : t.at? here with
  | none => rfl
  | some node =>
    cases node with
    | file c => rfl
    | link target => rfl
    | dir es =>
      rw [Tree.at?_concat hat]
      dsimp only [Option.map_some, Tree.shape]
      cases Entries.get? es name with
      | none => rfl
      | some child => cases child <;> rfl

namespace Disk.SameShape
variable {d d' : Disk}

theorem walk_eq (hs : d.SameShape d') (follow : Bool) : ∀ budget here todo,
    walk d'.tree follow budget here todo = walk d.tree follow budget here todo := by
  apply walk_induction
  · intro budget here
    rw [walk_nil, walk_nil]
  · intro budget here name rest ihrest ihlink
    rw [walk_cons_shape, walk_cons_shape, hs.shape, hs.shape]
    simp only [ihrest]
    cases budget with
    | zero => rfl
    | succ budget => simp only [fun here' todo => ihlink budget here' todo rfl]

end Disk.SameShape

end Retouch.Files
