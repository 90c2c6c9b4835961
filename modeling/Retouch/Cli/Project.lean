import Retouch.Cli.Command

/-! The project a command works in. -/

namespace Retouch.Cli
open Files

/-- Why a command ends early. -/
inductive Complaint where
  | emptyPath
  | noRoot (root : OsString) (fault : Fault)
  | settings (failure : Failure)
  | noChoice
  | incomplete
  deriving DecidableEq, Repr

namespace Complaint

def message : Complaint → String
  | emptyPath => "cannot make an empty path absolute"
  | noRoot root _ => "Project root " ++ OsString.shown root ++ " not found"
  | settings failure => failure.message
  | noChoice => "No codemod given; pass --codemod NAME when not running in a terminal"
  | incomplete => "Codemod did not complete"

/-- What is behind it. -/
def cause? : Complaint → Option String
  | noRoot _ fault => some fault.message
  | settings (.io reason) => some reason
  | _ => none

/-- A complaint as it is printed. -/
def print (c : Complaint) : String :=
  "Error: " ++ c.message ++ "\n" ++
    match c.cause? with
    | some reason => "  " ++ reason ++ "\n"
    | none => ""

end Complaint

structure Project where
  root : Option OsString
  settings : Settings
  deriving DecidableEq, Repr

namespace Project

/-- The root that was asked for, or else the nearest one above a path. -/
def findRoot (disk : Disk) (root : Option OsString) (start : OsString) :
    Except Complaint (Option OsString) :=
  match root with
  | some root =>
    match disk.canonical root with
    | .ok path => .ok (some path)
    | .error fault => .error (.noRoot root fault)
  | none =>
    match Path.absolute? (Path.ofNames disk.cwd) start with
    | some start => .ok (disk.projectRoot start)
    | none => .error .emptyPath

/-- The settings of a root, or the defaults without one. -/
def findSettings (lib : Libraries) (disk : Disk) (root : Option OsString) (suffixOnly : Bool) :
    Except Complaint Settings :=
  match root with
  | none => .ok (restrict .default)
  | some root =>
    match disk.settings lib.settings root with
    | .ok s => .ok (restrict s)
    | .error failure => .error (.settings failure)
where
  restrict (s : Settings) : Settings := if suffixOnly then { s with discovery := .suffix } else s

/-- The project that a command works in (`Project::resolve`). -/
def resolve (lib : Libraries) (disk : Disk) (root : Option OsString) (start : OsString)
    (suffixOnly : Bool) : Except Complaint Project :=
  match findRoot disk root start with
  | .error c => .error c
  | .ok root =>
    match findSettings lib disk root suffixOnly with
    | .error c => .error c
    | .ok settings => .ok ⟨root, settings⟩

/-- The directory that scripts are in. -/
def scriptDir? (p : Project) (disk : Disk) : Option OsString :=
  p.root.map (p.settings.scriptDir (Path.ofNames disk.cwd))

/-- A path as scripts see it: from the root if it lies under it (`display_path`). -/
def nameOf (p : Project) (path : OsString) : String :=
  match p.root with
  | none => OsString.shown path
  | some root =>
    let relative := Path.relativeTo path root
    if (Path.names relative).head? = some Path.dots then OsString.shown path
    else OsString.shown relative

end Project

end Retouch.Cli
