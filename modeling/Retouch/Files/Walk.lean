import Retouch.Files.Tree
import Retouch.Path

/-! Following a path through a tree. Links are followed where they stand, two dots
lead from where one really is, and so a path may mean something else than its
names say. Every link counts against a budget, so that loops end. -/

namespace Retouch.Files

/-- Why a path leads nowhere, or not to what was wanted. -/
inductive Fault where
  | notFound
  | notDirectory
  | isDirectory
  | tooManyLinks
  | notText
  deriving DecidableEq, Repr

def Fault.message : Fault → String
  | notFound => "No such file or directory (os error 2)"
  | notDirectory => "Not a directory (os error 20)"
  | isDirectory => "Is a directory (os error 21)"
  | tooManyLinks => "Too many levels of symbolic links (os error 40)"
  | notText => "stream did not contain valid UTF-8"

/-- Where a path ends: at something, or at a name that its directory has not got. -/
inductive Spot where
  | node (place : List OsString)
  | gap (dir : List OsString) (name : OsString)
  deriving DecidableEq, Repr

/-- How many links one path may lead through. -/
def linkBudget : Nat := 40

/-- The steps of a path. A slash at the end asks for a directory, as a dot does. -/
def steps (p : OsString) : List OsString :=
  let parts := (Path.splitSlashes p).filter (· ≠ [])
  if Path.endsWithSlash p then parts ++ [Path.dot] else parts

/-- Take steps from the place `here`, given where a link leads with the steps after
it. A link at the very end is followed only if `follow` says so. -/
def walkWith (t : Tree) (follow : Bool)
    (jump : List OsString → OsString → List OsString → Except Fault Spot) :
    List OsString → List OsString → Except Fault Spot
  | here, [] => .ok (.node here)
  | here, name :: rest =>
    match t.at? here with
    | some (.dir es) =>
      if name = Path.dot then walkWith t follow jump here rest
      else if name = Path.dots then walkWith t follow jump here.dropLast rest
      else
        match Entries.get? es name with
        | none => if rest.isEmpty then .ok (.gap here name) else .error .notFound
        | some (.link target) =>
          if rest.isEmpty && !follow then .ok (.node (here ++ [name]))
          else jump here target rest
        | some _ => walkWith t follow jump (here ++ [name]) rest
    | _ => .error .notDirectory

/-- Take steps from a place, following links within a budget. -/
def walk (t : Tree) (follow : Bool) : Nat → List OsString → List OsString → Except Fault Spot
  | 0 => walkWith t follow fun _ _ _ => .error .tooManyLinks
  | budget + 1 => walkWith t follow fun here target rest =>
    if target = [] then .error .notFound
    else
      walk t follow budget (if Path.isAbsolute target then [] else here) (steps target ++ rest)

@[simp] theorem walk_nil (t : Tree) (follow : Bool) (budget : Nat) (here : List OsString) :
    walk t follow budget here [] = .ok (.node here) := by
  cases budget <;> rfl

/-- One step. Where it leads through a link, the steps of the link come first. -/
@[simp] theorem walk_cons (t : Tree) (follow : Bool) (budget : Nat) (here : List OsString)
    (name : OsString) (rest : List OsString) :
    walk t follow budget here (name :: rest) =
      match t.at? here with
      | some (.dir es) =>
        if name = Path.dot then walk t follow budget here rest
        else if name = Path.dots then walk t follow budget here.dropLast rest
        else
          match Entries.get? es name with
          | none => if rest.isEmpty then .ok (.gap here name) else .error .notFound
          | some (.link target) =>
            if rest.isEmpty && !follow then .ok (.node (here ++ [name]))
            else
              match budget with
              | 0 => .error .tooManyLinks
              | budget + 1 =>
                if target = [] then .error .notFound
                else
                  walk t follow budget (if Path.isAbsolute target then [] else here)
                    (steps target ++ rest)
          | some _ => walk t follow budget (here ++ [name]) rest
      | _ => .error .notDirectory := by
  cases budget <;> rfl

end Retouch.Files
