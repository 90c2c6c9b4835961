import Retouch.Cli.Bundled
import Retouch.Notation.Engine

/-! The program, for scripts in the notation. It takes in the directories that the
arguments are about, lets the command work on that picture of them, and writes back
what was changed. -/

namespace Retouch.Main
open Files

/-- How deep directories are taken in. -/
def depth : Nat := 64

/-- What is at a path; `inside` tells what is in a directory. Without `whole`, files
are only noted. -/
def captureWith (whole : Bool) (inside : List (String × String) → IO Tree) (p : String) :
    IO Tree := do
  let path := (← IO.currentDir) / p
  match (← path.symlinkMetadata).type with
  | .symlink => return .link (.ofText (← IO.FS.realPath path).toString)
  | .dir => inside ((← path.readDir).toList.map fun e => (e.fileName, e.path.toString))
  | .file =>
    if whole then
      match String.fromUTF8? (← IO.FS.readBinFile path) with
      | some text => return .file (.text text)
      | none => return .file .garbled
    else return .file .garbled
  | .other => return .file .garbled

/-- What is at a path, down to a depth. What cannot be read is left out. -/
def capture (whole : Bool) : Nat → String → IO Tree
  | 0 => captureWith whole fun _ => return .empty
  | n + 1 => captureWith whole fun names => do
    let found ← names.filterMapM fun (name, p) => do
      try
        if name = ".git" then return some (.ofText name, .empty)
        else return some (.ofText name, ← capture whole n p)
      catch _ => return none
    return .dir found

/-- A disk with one more part of the real one; what cannot be read is left out. -/
def take (whole : Bool) (n : Nat) (disk : Disk) (p : String) : IO Disk := do
  try
    let found ← capture whole n p
    return { disk with tree := disk.tree.put (Path.names (.ofText p)) found }
  catch _ => return disk

/-- The paths that arguments may mean. -/
def mentioned (cwd : OsString) (args : List String) : List OsString :=
  args.filterMap fun arg =>
    let text := match Cli.Shape.of arg with
      | .long _ value => value
      | .short _ => none
      | .word => some arg
    text.bind fun text => Path.absolute? cwd (.ofText text)

/-- The part of the disk that a command line is about: outlines of the directories
above, and all of the projects. -/
def survey (args : List String) : IO Disk := do
  let cwd := OsString.ofText (← IO.currentDir).toString
  let places := mentioned cwd args
  let above := ((cwd :: places).flatMap Path.ancestors).eraseDups.mergeSort fun a b =>
    a.length ≤ b.length
  let outline ← (above.map OsString.shown).foldlM (take false 1) ⟨.empty, Path.names cwd⟩
  let roots := ((cwd :: places).filterMap outline.projectRoot).eraseDups
  ((roots ++ places).map OsString.shown).foldlM (take true depth) outline

/-- Put a file in its place at once. -/
def save (path text : String) : IO Unit := do
  IO.FS.writeFile (path ++ ".part") text
  IO.FS.rename (path ++ ".part") path

end Retouch.Main

def main (args : List String) : IO UInt32 := do
  let disk ← Retouch.Main.survey args
  match Retouch.Cli.execute .bundled Retouch.Notation.engine disk (args.map .ofText) () with
  | .never => return 1
  | .panic => return 101
  | .back r =>
    IO.print r.out
    IO.eprint r.err
    match r.written with
    | some path =>
      match r.disk.readText path with
      | .ok text => Retouch.Main.save path.shown text
      | .error _ => pure ()
    | none => pure ()
    return r.code
