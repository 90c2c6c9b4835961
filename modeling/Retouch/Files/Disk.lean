import Retouch.Files.Walk

/-! A tree together with the directory one is in: reading, listing and changing
files by path. -/

namespace Retouch.Files

structure Disk where
  tree : Tree
  cwd : List OsString
  deriving Repr

namespace Disk

/-- An empty tree, seen from its root. -/
def empty : Disk := ⟨.empty, []⟩

/-- Where a path begins. -/
def origin (d : Disk) (p : OsString) : List OsString := if Path.isAbsolute p then [] else d.cwd

/-- Where a path leads. The empty path leads nowhere. -/
def spot (d : Disk) (follow : Bool) (p : OsString) : Except Fault Spot :=
  if p = [] then .error .notFound else walk d.tree follow linkBudget (d.origin p) (steps p)

/-- The place of what a path leads to. -/
def place (d : Disk) (p : OsString) : Except Fault (List OsString) :=
  match d.spot true p with
  | .ok (.node place) => .ok place
  | .ok (.gap _ _) => .error .notFound
  | .error e => .error e

/-- What a path leads to. -/
def find (d : Disk) (p : OsString) : Except Fault Tree :=
  match d.place p with
  | .ok place =>
    match d.tree.at? place with
    | some t => .ok t
    | none => .error .notFound
  | .error e => .error e

def holds (d : Disk) (test : Tree → Bool) (p : OsString) : Bool :=
  match d.find p with
  | .ok t => test t
  | .error _ => false

def isFile (d : Disk) (p : OsString) : Bool := d.holds Tree.isFile p

def isDir (d : Disk) (p : OsString) : Bool := d.holds Tree.isDir p

/-- Whether a path leads to anything. -/
def has (d : Disk) (p : OsString) : Bool := d.holds (fun _ => true) p

def readText (d : Disk) (p : OsString) : Except Fault String :=
  match d.find p with
  | .ok (.file (.text s)) => .ok s
  | .ok (.file .garbled) => .error .notText
  | .ok _ => .error .isDirectory
  | .error e => .error e

/-- The names in a directory. -/
def list (d : Disk) (p : OsString) : Except Fault (List OsString) :=
  match d.find p with
  | .ok (.dir es) => .ok (es.map (·.1))
  | .ok _ => .error .notDirectory
  | .error e => .error e

/-- Go to a directory. Its place is where it really is. -/
def enter (d : Disk) (p : OsString) : Disk :=
  match d.place p with
  | .ok place => { d with cwd := place }
  | .error _ => d

/-! ### One path for each place -/

/-- The path of what a path leads to, free of links and dots (`canonicalize`). -/
def canonical (d : Disk) (p : OsString) : Except Fault OsString :=
  match d.place p with
  | .ok place => .ok (Path.ofNames place)
  | .error e => .error e

/-- The canonical path where there is one, else an absolute path (`normalize`). -/
def normalize (d : Disk) (p : OsString) : OsString :=
  match d.canonical p with
  | .ok q => q
  | .error _ => (Path.absolute? (Path.ofNames d.cwd) p).getD p

/-! ### Changes -/

/-- Make a directory and those above it. -/
def makeDir (d : Disk) (p : OsString) : Disk :=
  let tree := (steps p).foldl (fun (tree, done) step =>
    let done := done ++ [step]
    match walk tree true linkBudget (d.origin p) done with
    | .ok (.gap dir name) => (Tree.put tree (dir ++ [name]) .empty, done)
    | _ => (tree, done)) (d.tree, [])
  { d with tree := tree.1 }

/-- Make the directories above a path. -/
def makeParent (d : Disk) (p : OsString) : Disk :=
  match Path.parent? p with
  | some parent => if parent = [] then d else d.makeDir parent
  | none => d

/-- Put a file at the end of a path, through a link that may be there. -/
def write (d : Disk) (p : OsString) (c : Content) : Disk :=
  let d := d.makeParent p
  match d.spot true p with
  | .ok (.node place) => { d with tree := d.tree.put place (.file c) }
  | .ok (.gap dir name) => { d with tree := d.tree.put (dir ++ [name]) (.file c) }
  | .error _ => d

/-- Put a file at a path, in the place of a link that may be there. -/
def supplant (d : Disk) (p : OsString) (c : Content) : Except Fault Disk :=
  match d.spot false p with
  | .ok (.node place) =>
    match d.tree.at? place with
    | some (.dir _) => .error .isDirectory
    | _ => .ok { d with tree := d.tree.put place (.file c) }
  | .ok (.gap dir name) => .ok { d with tree := d.tree.put (dir ++ [name]) (.file c) }
  | .error e => .error e

/-- Make a link. -/
def link (d : Disk) (p target : OsString) : Disk :=
  let d := d.makeParent p
  match d.spot false p with
  | .ok (.gap dir name) => { d with tree := d.tree.put (dir ++ [name]) (.link target) }
  | _ => d

/-- Take away what is at a path, with all that is below it. -/
def remove (d : Disk) (p : OsString) : Disk :=
  match d.spot false p with
  | .ok (.node place) => { d with tree := d.tree.erase place }
  | _ => d

end Disk

end Retouch.Files
